import SeaweedFS.Lib.Search
import SeaweedFS.Storage.Types

/-!
# `weed/storage/needle_map/compact_map.go`: the needle map in memory

Keys are cut into segments of 50000. A segment keeps its entries in a slice sorted by the low part of
the key, with its first and last key at hand. A panic of the source is an error here.
-/

namespace Storage

open Lib

abbrev CompactKey := UInt16
abbrev Chunk := UInt64

def maxCompactKey : CompactKey := 65535
def segmentChunkSize : Nat := 50000

/-- `CompactOffset`: the bytes of an offset. -/
abbrev CompactOffset := List UInt8

/-- `NeedleValue`. -/
structure NeedleValue where
  key : NeedleId
  offset : Offset
  size : Size
deriving DecidableEq

/-- `CompactNeedleValue`. -/
structure CompactNeedleValue where
  key : CompactKey
  offset : CompactOffset
  size : Size
deriving DecidableEq

/-- `CompactMapSegment`. -/
structure CompactMapSegment where
  list : List CompactNeedleValue
  chunk : Chunk
  firstKey : CompactKey
  lastKey : CompactKey

/-- `CompactMap`. -/
structure CompactMap where
  segments : AList fun _ : Chunk => CompactMapSegment

/-- The panics of the functions below. -/
inductive Panic where
  | indexOutOfRange
  | segmentFull
deriving DecidableEq

/-- `CompactKey.Key`. -/
def CompactKey.key (ck : CompactKey) (chunk : Chunk) : NeedleId :=
  UInt64.ofNat segmentChunkSize * chunk + ck.toUInt64

/-- `OffsetToCompact`. -/
def offsetToCompact (offset : Offset) : CompactOffset := offsetToBytes offset

/-- `CompactOffset.Offset`. -/
def CompactOffset.offset (co : CompactOffset) : Offset := bytesToOffset co

/-- `CompactNeedleValue.NeedleValue`. -/
def CompactNeedleValue.needleValue (cnv : CompactNeedleValue) (chunk : Chunk) : NeedleValue where
  key := CompactKey.key cnv.key chunk
  offset := CompactOffset.offset cnv.offset
  size := cnv.size

/-- `newCompactMapSegment`. -/
def newCompactMapSegment (chunk : Chunk) : CompactMapSegment where
  list := []
  chunk := chunk
  firstKey := maxCompactKey
  lastKey := 0

namespace CompactMapSegment

/-- `compactKey`. -/
def compactKey (cs : CompactMapSegment) (key : NeedleId) : CompactKey :=
  (key - UInt64.ofNat segmentChunkSize * cs.chunk).toUInt16

/-- `bsearchKey`: the index of the key and whether it is there, or where it should be inserted. -/
def bsearchKey (cs : CompactMapSegment) (key : NeedleId) : Except Panic (Nat × Bool) :=
  let ck := cs.compactKey key
  if cs.list.length = 0 then .ok (0, false)
  else if ck = cs.firstKey then .ok (0, true)
  else if ck ≤ cs.firstKey then .ok (0, false)
  else if ck = cs.lastKey then .ok (cs.list.length - 1, true)
  else if ck > cs.lastKey then .ok (cs.list.length, false)
  else
    -- the search asks only for indices within the list
    let i := search cs.list.length fun i => cs.list[i]?.any fun cnv => cnv.key ≥ ck
    match cs.list[i]? with
    | some cnv => .ok (i, cnv.key == ck)
    | none => .error .indexOutOfRange

/-- `set`. The two ways the source makes room for a new entry differ in the slice's capacity only. -/
def set (cs : CompactMapSegment) (key : NeedleId) (offset : Offset) (size : Size) :
    Except Panic (CompactMapSegment × Offset × Size) := do
  let (i, found) ← cs.bsearchKey key
  if found then
    match cs.list[i]? with
    | none => .error .indexOutOfRange
    | some cnv =>
      return ({ cs with
          list := cs.list.set i { cnv with offset := offsetToCompact offset, size := size } },
        CompactOffset.offset cnv.offset, cnv.size)
  else if cs.list.length ≥ segmentChunkSize then .error .segmentFull
  else if i > cs.list.length then .error .indexOutOfRange
  else
    let ck := cs.compactKey key
    return ({ cs with
        list := cs.list.insertIdx i ⟨ck, offsetToCompact offset, size⟩
        firstKey := if ck < cs.firstKey then ck else cs.firstKey
        lastKey := if ck > cs.lastKey then ck else cs.lastKey }, {}, 0)

/-- `get`. -/
def get (cs : CompactMapSegment) (key : NeedleId) : Except Panic (Option CompactNeedleValue) := do
  let (i, found) ← cs.bsearchKey key
  if found then
    match cs.list[i]? with
    | none => .error .indexOutOfRange
    | some cnv => return some cnv
  else return none

/-- `delete`: a live entry is marked. -/
def delete (cs : CompactMapSegment) (key : NeedleId) : Except Panic (CompactMapSegment × Size) := do
  let (i, found) ← cs.bsearchKey key
  if found then
    match cs.list[i]? with
    | none => .error .indexOutOfRange
    | some cnv =>
      if cnv.size.isDeleted then return (cs, 0)
      else
        let size := if cnv.size = 0 then tombstoneFileSize else -cnv.size
        return ({ cs with list := cs.list.set i { cnv with size := size } }, cnv.size)
  else return (cs, 0)

end CompactMapSegment

/-- `NewCompactMap`. -/
def newCompactMap : CompactMap := ⟨∅⟩

/-- `Chunk(key / SegmentChunkSize)`. -/
def chunkOf (key : NeedleId) : Chunk := key / UInt64.ofNat segmentChunkSize

namespace CompactMap

/-- `segmentForKey`, without the new segment being put into the map. -/
def segmentForKey (cm : CompactMap) (key : NeedleId) : CompactMapSegment :=
  (cm.segments.lookup (chunkOf key)).getD (newCompactMapSegment (chunkOf key))

/-- `Set`: the old offset and size are returned. -/
def set (cm : CompactMap) (key : NeedleId) (offset : Offset) (size : Size) :
    Except Panic (CompactMap × Offset × Size) := do
  let (cs, oldOffset, oldSize) ← (cm.segmentForKey key).set key offset size
  return (⟨cm.segments.insert (chunkOf key) cs⟩, oldOffset, oldSize)

/-- `Get`. -/
def get (cm : CompactMap) (key : NeedleId) : Except Panic (Option NeedleValue) :=
  match cm.segments.lookup (chunkOf key) with
  | none => .ok none
  | some cs => do
    let cnv ← cs.get key
    return cnv.map fun cnv => cnv.needleValue cs.chunk

/-- `Delete`: the old size of a live entry is returned. -/
def delete (cm : CompactMap) (key : NeedleId) : Except Panic (CompactMap × Size) :=
  match cm.segments.lookup (chunkOf key) with
  | none => .ok (cm, 0)
  | some cs => do
    let (cs, size) ← cs.delete key
    return (⟨cm.segments.insert (chunkOf key) cs⟩, size)

/-- `AscendingVisit`, for a visitor that changes a state and may fail. The chunks are sorted, so the map's own order
does not matter. -/
def ascendingVisit {σ ε : Type} (cm : CompactMap) (visit : σ → NeedleValue → Except ε σ) (s : σ) :
    Except ε σ :=
  (cm.segments.keys.insertionSort (· ≤ ·)).foldlM (fun s c =>
    match cm.segments.lookup c with
    | none => .ok s
    | some cs => cs.list.foldlM (fun s cnv => visit s (cnv.needleValue cs.chunk)) s) s

end CompactMap

end Storage
