import SeaweedFS.Mq.Kafka.FlexibleVersions

/-!
# Compact strings: what a length can do

`consumed + actualLength` is computed before it is compared with the bytes that there are, so a length close to
the largest `int` makes it negative.
-/

namespace Mq.Kafka

theorem decodeLoop_le {data : List UInt8} {i : Nat} {result : UInt64} :
    (decodeLoop i result data).2 ≤ 10 ∧ (decodeLoop i result data).2 ≤ i + data.length := by
  induction data generalizing i result with
  | nil => simp [decodeLoop]
  | cons b data ih =>
    have hrest := @ih (i + 1) (result ||| (b &&& 0x7f).toUInt64 <<< (7 * i).toUInt64)
    simp only [decodeLoop, List.length_cons]
    split
    · simp
    · split
      · simp
        omega
      · omega

section
variable {data : List UInt8} {length : UInt64} {read : Nat} (hdecode : decodeUnsignedVarint data = (length, read))
include hdecode

theorem read_le : read ≤ 10 ∧ read ≤ data.length := by
  have hread := @decodeLoop_le data 0 0
  rwa [Nat.zero_add, ← decodeUnsignedVarint, hdecode] at hread

theorem toInt_read : (Int64.ofNat read).toInt = read :=
  Int64.toInt_ofNat_of_lt (Nat.lt_of_le_of_lt (read_le hdecode).1 (by decide))

omit hdecode in
theorem toInt_actualLength (h0 : length ≠ 0) : (length - 1).toInt64.toInt =
    if length.toNat ≤ 2 ^ 63 then (length.toNat : Int) - 1 else length.toNat - 1 - 2 ^ 64 := by
  have hlt := length.toNat_lt
  have hpos : length.toNat ≠ 0 := fun h => h0 (UInt64.toNat_inj.1 h)
  have hpred : (length - 1).toNat = length.toNat - 1 := by
    rw [UInt64.toNat_sub]
    simp
    omega
  show BitVec.toInt (length - 1).toBitVec = _
  rw [BitVec.toInt_eq_toNat_bmod, UInt64.toNat_toBitVec, hpred]
  split <;> simp only [Int.bmod] <;> omega

theorem toInt_sum (h0 : length ≠ 0) (hle : length.toNat ≤ 2 ^ 63) :
    (Int64.ofNat read + (length - 1).toInt64).toInt =
    if length.toNat + read ≤ 2 ^ 63 then (read + length.toNat - 1 : Int) else read + length.toNat - 1 - 2 ^ 64 := by
  have h10 := (read_le hdecode).1
  rw [Int64.toInt_add, toInt_read hdecode, toInt_actualLength h0, if_pos hle]
  split <;> simp only [Int.bmod] <;> omega

/-- The result over the length and the number of bytes of its varint as numbers. -/
theorem parseCompactString_eq (hlen : data.length < 2 ^ 63) : parseCompactString data =
    if read = 0 ∨ 2 ^ 63 < length.toNat then .ok (none, 0)
    else if length = 0 then .ok (none, Int64.ofNat read)
    else if 2 ^ 63 < length.toNat + read then .error .sliceBounds
    else
      let stop := read + (length.toNat - 1)
      if data.length < stop then .ok (none, 0) else .ok (some ((data.take stop).drop read), Int64.ofNat stop) := by
  have hall := (read_le hdecode).2
  have hread := toInt_read hdecode
  have hr0 : Int64.ofNat read = 0 ↔ read = 0 := by
    rw [← Int64.toInt_inj, hread]
    simp
  by_cases hnil : data = []
  · simp_all [parseCompactString]
  simp only [parseCompactString, if_neg hnil, hdecode, hr0, Int64.lt_iff_toInt_lt, ← Int64.toInt_inj, gt_iff_lt,
    Int64.toInt_zero, sliceOf, Int64.le_iff_toInt_le, hread, Int64.toInt_ofNat_of_lt hlen, bind, Except.bind]
  by_cases h0 : length = 0
  · simp [h0]
  have hpos : length.toNat ≠ 0 := fun h => h0 (UInt64.toNat_inj.1 h)
  have hlt := length.toNat_lt
  rw [toInt_actualLength h0]
  by_cases hle : length.toNat ≤ 2 ^ 63
  · have hsum := toInt_sum hdecode h0 hle
    rw [hsum, if_pos hle]
    by_cases hov : length.toNat + read ≤ 2 ^ 63
    · have hstop := Int64.toInt_ofNat_of_lt (n := read + (length.toNat - 1)) (by omega)
      have hof : Int64.ofNat read + (length - 1).toInt64 = Int64.ofNat (read + (length.toNat - 1)) := by
        rw [← Int64.toInt_inj, hsum, if_pos hov, hstop]
        omega
      have hempty : (data.take read).drop read = [] := by simp
      have hslice : (0 : Int) ≤ read ∧ (read : Int) ≤ read + length.toNat - 1 := by omega
      rw [if_pos hov, if_pos hslice]
      simp only [hof, Int64.toNatClampNeg, hread, hstop, Int.toNat_natCast, pure, Except.pure]
      grind
    · grind
  · grind

end

/-- A result that stays inside of the data: the bytes are the `length` ones before `consumed`. -/
structure IsParsed (data : List UInt8) (length : Nat) (bytes : Option (List UInt8)) (consumed : Int) : Prop where
  nonneg : 0 ≤ consumed
  le_length : consumed ≤ data.length
  bytes_eq : ∀ s ∈ bytes, s.length = length ∧ s = (data.take consumed.toNat).drop (consumed.toNat - length)

/-- **A compact string** is parsed without a panic exactly if its length is past the largest `int` or leaves room
below it. -/
theorem parseCompactString_isParsed (data : List UInt8) (hlen : data.length < 2 ^ 63) :
    (∃ bytes consumed, parseCompactString data = .ok (bytes, consumed) ∧
      IsParsed data ((decodeUnsignedVarint data).1.toNat - 1) bytes consumed.toInt) ↔
    2 ^ 63 < (decodeUnsignedVarint data).1.toNat ∨
      (decodeUnsignedVarint data).1.toNat + (decodeUnsignedVarint data).2 ≤ 2 ^ 63 := by
  obtain ⟨⟨length, read⟩, hdecode⟩ : ∃ decoded, decodeUnsignedVarint data = decoded := ⟨_, rfl⟩
  obtain ⟨h10, hle⟩ := read_le hdecode
  have hnone : ∀ read ≤ data.length, IsParsed data (length.toNat - 1) none read := fun read h =>
    ⟨by simp, by simpa using h, by simp⟩
  rw [hdecode, parseCompactString_eq hdecode hlen]
  dsimp only
  split
  · refine iff_of_true ⟨none, 0, rfl, hnone 0 (Nat.zero_le _)⟩ ?_
    omega
  split
  · rename_i h0
    refine iff_of_true ⟨none, _, rfl, (toInt_read hdecode).symm ▸ hnone read hle⟩ ?_
    simp [h0]
    omega
  split
  · simp
    omega
  rename_i hread h0 hov
  have hfits : 2 ^ 63 < length.toNat ∨ length.toNat + read ≤ 2 ^ 63 := by omega
  split
  · exact iff_of_true ⟨none, 0, rfl, hnone 0 (Nat.zero_le _)⟩ hfits
  rename_i hstop
  refine iff_of_true ⟨_, _, rfl, ?_⟩ hfits
  rw [Int64.toInt_ofNat_of_lt (by omega)]
  refine ⟨by omega, by omega, ?_⟩
  simp only [Int.toNat_natCast, Nat.add_sub_cancel, Option.mem_some_iff, forall_eq', and_true, List.length_drop,
    List.length_take]
  omega

/-- A string of two bytes. -/
theorem parseCompactString_hi : ∃ bytes consumed, parseCompactString [3, 104, 105, 7] = .ok (bytes, consumed) ∧
    IsParsed [3, 104, 105, 7] 2 bytes consumed.toInt :=
  (parseCompactString_isParsed [3, 104, 105, 7] (by decide)).2 (by decide)

/-- The length `2 ^ 63` in ten bytes. -/
theorem parseCompactString_panics : parseCompactString (List.replicate 9 0x80 ++ [1]) = .error .sliceBounds := by
  decide +kernel

end Mq.Kafka
