import SeaweedFS.Util.Bytes

/-!
# `weed/storage/types`: ids, sizes and offsets

An entry of a needle map names a record by its offset in the `.dat` file, in units of eight bytes,
and its size. A negative size marks a deleted entry. Offsets have four bytes, as in the default
build.
-/

namespace Storage

open Lib Util

variable {s : Size}

abbrev NeedleId := UInt64
abbrev Cookie := UInt32
abbrev Size := Int32

def needleIdSize : Nat := 8
def offsetSize : Nat := 4
def sizeSize : Nat := 4
def cookieSize : Nat := 4
def needleHeaderSize : Nat := cookieSize + needleIdSize + sizeSize
def needleMapEntrySize : Nat := needleIdSize + offsetSize + sizeSize
def timestampSize : Nat := 8
def needlePaddingSize : Nat := 8
def maxPossibleVolumeSize : Nat := 4 * 1024 * 1024 * 1024 * 8

/-- `TombstoneFileSize`. -/
def tombstoneFileSize : Size := -1

namespace Size

/-- `IsDeleted`. -/
def isDeleted (s : Size) : Bool := s < 0 || s == tombstoneFileSize

/-- `IsValid`. -/
def isValid (s : Size) : Bool := s > 0 && s != tombstoneFileSize

/-- `uint64(size)`. -/
def uint64 (s : Size) : UInt64 := s.toInt64.toUInt64

end Size

/-- `Offset`: the four bytes of an offset in units of `NeedlePaddingSize`. -/
structure Offset where
  b3 : UInt8 := 0
  b2 : UInt8 := 0
  b1 : UInt8 := 0
  b0 : UInt8 := 0
deriving DecidableEq, Repr

/-- `OffsetToBytes`. -/
def offsetToBytes (offset : Offset) : List UInt8 := [offset.b3, offset.b2, offset.b1, offset.b0]

/-- `BytesToOffset`. -/
def bytesToOffset (bytes : List UInt8) : Offset where
  b3 := bytes.getD 0 0
  b2 := bytes.getD 1 0
  b1 := bytes.getD 2 0
  b0 := bytes.getD 3 0

/-- `Uint32ToOffset`. -/
def uint32ToOffset (offset : UInt32) : Offset where
  b3 := (offset >>> 24).toUInt8
  b2 := (offset >>> 16).toUInt8
  b1 := (offset >>> 8).toUInt8
  b0 := offset.toUInt8

/-- `IsZero`. -/
def Offset.isZero (offset : Offset) : Bool :=
  offset.b0 == 0 && offset.b1 == 0 && offset.b2 == 0 && offset.b3 == 0

/-- `ToOffset`: what is left of the offset after four bytes is lost. -/
def toOffset (offset : Nat) : Offset := uint32ToOffset (UInt32.ofNat (offset / needlePaddingSize))

/-- `ToActualOffset`. -/
def Offset.toActualOffset (offset : Offset) : Nat :=
  (offset.b0.toNat + offset.b1.toNat * 2 ^ 8 + offset.b2.toNat * 2 ^ 16 + offset.b3.toNat * 2 ^ 24) *
    needlePaddingSize

/-- `NeedleIdToBytes`. -/
def needleIdToBytes (needleId : NeedleId) : List UInt8 := uint64toBytes needleId

/-- `BytesToNeedleId`. -/
def bytesToNeedleId (bytes : List UInt8) : NeedleId := bytesToUint64 bytes

/-- `CookieToBytes`. -/
def cookieToBytes (cookie : Cookie) : List UInt8 := uint32toBytes cookie

/-- `BytesToCookie`. -/
def bytesToCookie (bytes : List UInt8) : Cookie := bytesToUint32 (bytes.take 4)

/-- `SizeToBytes`. -/
def sizeToBytes (size : Size) : List UInt8 := uint32toBytes size.toUInt32

/-- `BytesToSize`. -/
def bytesToSize (bytes : List UInt8) : Size := (bytesToUint32 bytes).toInt32

/-! ## Sizes -/

theorem isDeleted_iff : s.isDeleted = true ↔ s.toInt < 0 := by
  unfold Size.isDeleted tombstoneFileSize
  simp only [Bool.or_eq_true, decide_eq_true_eq, beq_iff_eq, Int32.lt_iff_toInt_lt]
  constructor
  · rintro (h | rfl)
    · simpa using h
    · decide
  · intro h
    exact .inl (by simpa using h)

theorem isDeleted_eq_false_iff : s.isDeleted = false ↔ 0 ≤ s.toInt := by
  rw [← Bool.not_eq_true, isDeleted_iff, not_lt]

theorem isValid_iff : s.isValid = true ↔ 0 < s.toInt := by
  unfold Size.isValid tombstoneFileSize
  simp only [gt_iff_lt, Bool.and_eq_true, decide_eq_true_eq, bne_iff_ne, Int32.lt_iff_toInt_lt]
  constructor
  · intro h
    simpa using h.1
  · intro h
    refine ⟨by simpa using h, ?_⟩
    rintro rfl
    revert h
    decide

theorem size_eq_zero_iff : s = 0 ↔ s.toInt = 0 := by
  rw [← Int32.toInt_inj]
  rfl

theorem toInt_neg_of_pos (h : 0 ≤ s.toInt) : (-s).toInt = -s.toInt := by
  have := s.toInt_lt
  rw [Int32.toInt_neg, Int.bmod_def]
  split <;> omega

/-! ## Offsets -/

@[simp] theorem length_offsetToBytes (offset : Offset) : (offsetToBytes offset).length = 4 := rfl

@[simp] theorem bytesToOffset_offsetToBytes (offset : Offset) :
    bytesToOffset (offsetToBytes offset) = offset := rfl

theorem isZero_iff {offset : Offset} : offset.isZero = true ↔ offset = {} := by
  obtain ⟨b3, b2, b1, b0⟩ := offset
  simp only [Offset.isZero, Bool.and_eq_true, beq_iff_eq, Offset.mk.injEq]
  tauto

theorem toActualOffset_toOffset {offset : Nat} (h : offset < maxPossibleVolumeSize)
    (ha : offset % needlePaddingSize = 0) : (toOffset offset).toActualOffset = offset := by
  unfold maxPossibleVolumeSize needlePaddingSize at *
  have hlt : offset / 8 < 2 ^ 32 := by omega
  have h8 : UInt32.toNat 8 % 32 = 8 := rfl
  have h16 : UInt32.toNat 16 % 32 = 16 := rfl
  have h24 : UInt32.toNat 24 % 32 = 24 := rfl
  simp only [toOffset, uint32ToOffset, Offset.toActualOffset, needlePaddingSize,
    UInt32.toNat_toUInt8, UInt32.toNat_shiftRight, UInt32.toNat_ofNat', Nat.mod_eq_of_lt hlt,
    Nat.shiftRight_eq_div_pow, h8, h16, h24]
  omega

@[simp] theorem length_needleIdToBytes (id : NeedleId) : (needleIdToBytes id).length = 8 := rfl

@[simp] theorem bytesToNeedleId_needleIdToBytes (id : NeedleId) :
    bytesToNeedleId (needleIdToBytes id) = id := bytesToUint64_uint64toBytes id

@[simp] theorem bytesToCookie_cookieToBytes (cookie : Cookie) :
    bytesToCookie (cookieToBytes cookie) = cookie := bytesToUint32_uint32toBytes cookie

@[simp] theorem bytesToSize_sizeToBytes (size : Size) : bytesToSize (sizeToBytes size) = size := by
  rw [bytesToSize, sizeToBytes, bytesToUint32_uint32toBytes, Int32.toInt32_toUInt32]

end Storage
