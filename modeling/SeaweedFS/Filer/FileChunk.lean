import SeaweedFS.Lib.Layers
import SeaweedFS.Storage.FileId

/-!
# File chunks, visible intervals and chunk views

The data of `weed/filer/filechunks.go` and of the `FileChunk` message, and the intervals of
`weed/filer/interval_list.go`. Offsets and time stamps are `Int` with the conversion `int64` where the code
computes with them. A `FileChunk` carries that its bytes lie within a file, whose offsets are `int64`, and that
its stamp counts nanoseconds from the epoch on, so that this does not wrap (`FileChunk.stop_eq`).
-/

namespace Filer

open Lib Storage

/-- `math.MaxInt64`. -/
def maxInt64 : Int := 2 ^ 63 - 1

/-- The conversion to `int64`. -/
def int64 (n : Int) : Int := n.bmod (2 ^ 64)

/-- The conversion to `uint64`. -/
def uint64 (n : Int) : Nat := (n % 2 ^ 64).toNat

theorem int64_of_range {n : Int} (h1 : -2 ^ 63 ≤ n) (h2 : n ≤ maxInt64) : int64 n = n := by
  unfold int64 maxInt64 at *
  rw [Int.bmod_def]
  split <;> omega

theorem int64_le (n : Int) : int64 n ≤ maxInt64 := by
  unfold int64 maxInt64
  rw [Int.bmod_def]
  split <;> omega

/-- The fields of `filer_pb.FileChunk` that resolving the chunks of a file reads. -/
structure FileChunk where
  fileId : String
  offset : Int
  size : Nat
  modifiedTsNs : Int
  fid : Option FileId := none
  cipherKey : List UInt8 := []
  isCompressed : Bool := false
  isChunkManifest : Bool := false
  offset_nonneg : 0 ≤ offset := by decide
  stop_le : offset + size ≤ maxInt64 := by decide
  ts_nonneg : 0 ≤ modifiedTsNs := by decide
  ts_le : modifiedTsNs ≤ maxInt64 := by decide
deriving DecidableEq

namespace FileChunk

/-- A chunk of plain data. -/
def data (fileId : String) (offset size modifiedTsNs : Nat)
    (h : (offset + size : Int) ≤ maxInt64 ∧ modifiedTsNs ≤ maxInt64 := by decide) : FileChunk where
  fileId := fileId
  offset := offset
  size := size
  modifiedTsNs := modifiedTsNs
  offset_nonneg := Int.natCast_nonneg offset
  stop_le := h.1
  ts_nonneg := Int.natCast_nonneg modifiedTsNs
  ts_le := h.2

/-- `GetFileIdString`. -/
def getFileIdString (c : FileChunk) : String :=
  if c.fileId ≠ "" then c.fileId
  else match c.fid with
    | some fid => fid.string
    | none => ""

/-- `chunk.Offset + int64(chunk.Size)`. -/
def stop (c : FileChunk) : Int := int64 (c.offset + int64 c.size)

theorem stop_eq (c : FileChunk) : c.stop = c.offset + c.size := by
  have h1 := c.offset_nonneg
  have h2 := c.stop_le
  have h3 : int64 c.size = c.size := int64_of_range (by omega) (by omega)
  rw [stop, h3]
  exact int64_of_range (by omega) (by omega)

theorem offset_le_stop (c : FileChunk) : c.offset ≤ c.stop := by rw [stop_eq]; omega

theorem stop_le_maxInt64 (c : FileChunk) : c.stop ≤ maxInt64 := by rw [stop_eq]; exact c.stop_le

end FileChunk

/-- The bytes `[Offset, Offset+Size)` of a file, stamped with the modification time. -/
instance : Layer FileChunk := ⟨FileChunk.offset, FileChunk.stop, FileChunk.modifiedTsNs⟩

@[simp] theorem lo_chunk (c : FileChunk) : lo c = c.offset := rfl
@[simp] theorem hi_chunk (c : FileChunk) : hi c = c.stop := rfl
@[simp] theorem ts_chunk (c : FileChunk) : ts c = c.modifiedTsNs := rfl

/-- `VisibleInterval`: the part `[start, stop)` of a file that shows a chunk's bytes from
`offsetInChunk` on. -/
structure VisibleInterval where
  start : Int
  stop : Int
  modifiedTsNs : Int
  fileId : String
  offsetInChunk : Int
  chunkSize : Nat
  cipherKey : List UInt8
  isGzipped : Bool
deriving DecidableEq

/-- `ChunkView`: the bytes of a chunk to read for a range of a file. -/
structure ChunkView where
  fileId : String
  offsetInChunk : Int
  viewSize : Nat
  viewOffset : Int
  chunkSize : Nat
  cipherKey : List UInt8
  isGzipped : Bool
  modifiedTsNs : Int
deriving DecidableEq

/-- `IntervalValue`: what an interval list asks of its values, `Clone` apart. -/
class IntervalValue (T : Type) where
  setStartStop : T → Int → Int → T

/-- `VisibleInterval.SetStartStop`. -/
def VisibleInterval.setStartStop (v : VisibleInterval) (start stop : Int) : VisibleInterval :=
  { v with offsetInChunk := v.offsetInChunk + (start - v.start), start := start, stop := stop }

/-- `ChunkView.SetStartStop`. -/
def ChunkView.setStartStop (cv : ChunkView) (start stop : Int) : ChunkView :=
  { cv with
    offsetInChunk := cv.offsetInChunk + (start - cv.viewOffset)
    viewOffset := start
    viewSize := uint64 (stop - start) }

instance : IntervalValue VisibleInterval := ⟨VisibleInterval.setStartStop⟩
instance : IntervalValue ChunkView := ⟨ChunkView.setStartStop⟩

/-- `Interval`, without the links of the list it is in. -/
structure Interval (T : Type) where
  startOffset : Int
  stopOffset : Int
  tsNs : Int
  value : T
deriving DecidableEq

instance {T : Type} : Layer (Interval T) :=
  ⟨Interval.startOffset, Interval.stopOffset, Interval.tsNs⟩

section
variable {T : Type} (i : Interval T)

@[simp] theorem lo_interval : lo i = i.startOffset := rfl
@[simp] theorem hi_interval : hi i = i.stopOffset := rfl
@[simp] theorem ts_interval : ts i = i.tsNs := rfl

end

/-- `IntervalList`: the nodes from `Front()` along `Next`. -/
abbrev IntervalList (T : Type) := List (Interval T)

/-- `AppendInterval`. -/
def IntervalList.appendInterval {T : Type} (list : IntervalList T) (interval : Interval T) :
    IntervalList T := list ++ [interval]

end Filer
