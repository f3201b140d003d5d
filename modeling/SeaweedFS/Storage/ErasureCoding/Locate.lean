import SeaweedFS.Storage.ErasureCoding.Encoder

/-!
# `weed/storage/erasure_coding/ec_locate.go`: where data stands in the shards

`LocateData` cuts a part of the `.dat` file into intervals of blocks; `ToShardIdAndOffset` names the
shard and the offset of an interval. Divisions round to zero. Block lengths are positive.
`readEcShardIntervals` of `weed/storage/store_ec.go` reads the intervals.
-/

namespace ErasureCoding

open Lib

/-- `Interval`. -/
structure Interval where
  blockIndex : Int
  innerBlockOffset : Int
  size : Int
  isLargeBlock : Bool
  largeBlockRowsCount : Int
deriving DecidableEq, Repr

/-- `locateOffsetWithinBlocks`. -/
def locateOffsetWithinBlocks (blockLength offset : Int) : Int × Int :=
  (offset.tdiv blockLength, offset.tmod blockLength)

/-- The number of rows of large blocks that `locateOffset` takes a shard to have. -/
def nLargeBlockRows (largeBlockLength shardDatSize : Int) : Int :=
  (shardDatSize - 1).tdiv largeBlockLength

/-- `locateOffset`: the index of the block, whether it is a large one, the number of large rows, and the offset
within the block. -/
def locateOffset (largeBlockLength smallBlockLength shardDatSize offset : Int) :
    Int × Bool × Int × Int :=
  let largeRowSize := largeBlockLength * dataShardsCount
  let nLargeBlockRows := nLargeBlockRows largeBlockLength shardDatSize
  if offset < nLargeBlockRows * largeRowSize then
    let (blockIndex, innerBlockOffset) := locateOffsetWithinBlocks largeBlockLength offset
    (blockIndex, true, nLargeBlockRows, innerBlockOffset)
  else
    let (blockIndex, innerBlockOffset) :=
      locateOffsetWithinBlocks smallBlockLength (offset - nLargeBlockRows * largeRowSize)
    (blockIndex, false, nLargeBlockRows, innerBlockOffset)

/-- `moveToNextBlock`. -/
def moveToNextBlock (blockIndex : Int) (isLargeBlock : Bool) (nLargeBlockRows : Int) : Int × Bool :=
  if isLargeBlock ∧ blockIndex + 1 = nLargeBlockRows * dataShardsCount then (0, false)
  else (blockIndex + 1, isLargeBlock)

/-- The loop of `LocateData`. An interval cut at the end of its block is smaller than `size`, so that it fits
`int32`. -/
def locateLoop (largeBlockLength smallBlockLength nLargeBlockRows : Int) :
    Nat → Int → Bool → Int → Int → Option (List Interval)
  | 0, _, _, _, _ => none
  | fuel + 1, blockIndex, isLargeBlock, innerBlockOffset, size =>
    if size > 0 then
      let blockRemaining :=
        (if isLargeBlock then largeBlockLength else smallBlockLength) - innerBlockOffset
      let next := moveToNextBlock blockIndex isLargeBlock nLargeBlockRows
      let interval : Interval := ⟨blockIndex, innerBlockOffset, size, isLargeBlock, nLargeBlockRows⟩
      if blockRemaining ≤ 0 then
        locateLoop largeBlockLength smallBlockLength nLargeBlockRows fuel next.1 next.2 0 size
      else if size ≤ blockRemaining then some [interval]
      else do
        let intervals ← locateLoop largeBlockLength smallBlockLength nLargeBlockRows fuel next.1 next.2
          0 (size - blockRemaining)
        return { interval with size := blockRemaining } :: intervals
    else some []

/-- `LocateData`. Every second round adds an interval, or the loop never ends (`none`). -/
def locateData (largeBlockLength smallBlockLength shardDatSize offset size : Int) :
    Option (List Interval) :=
  let (blockIndex, isLargeBlock, nLargeBlockRows, innerBlockOffset) :=
    locateOffset largeBlockLength smallBlockLength shardDatSize offset
  locateLoop largeBlockLength smallBlockLength nLargeBlockRows (2 * size.toNat + 1) blockIndex
    isLargeBlock innerBlockOffset size

/-- `ToShardIdAndOffset`. -/
def Interval.toShardIdAndOffset (interval : Interval) (largeBlockSize smallBlockSize : Int) :
    Nat × Int :=
  let rowIndex := interval.blockIndex.tdiv dataShardsCount
  let ecFileOffset := interval.innerBlockOffset +
    if interval.isLargeBlock then rowIndex * largeBlockSize
    else interval.largeBlockRowsCount * largeBlockSize + rowIndex * smallBlockSize
  ((interval.blockIndex.tmod dataShardsCount).toNat, ecFileOffset)

section
variable (shards : List File) (largeBlockSize smallBlockSize : Int)

/-- `readOneEcShardInterval` with the shards at hand; `none`: the shard does not have all the bytes. -/
def readOneEcShardInterval (interval : Interval) : Option (List UInt8) := do
  let (shardId, actualOffset) := interval.toShardIdAndOffset largeBlockSize smallBlockSize
  let shard ← shards[shardId]?
  let (data, eof) := shard.readAt interval.size.toNat actualOffset.toNat
  if eof then none else some data

/-- `readEcShardIntervals`. -/
def readEcShardIntervals : List Interval → Option (List UInt8)
  | [] => some []
  | interval :: intervals => do
    let data ← readOneEcShardInterval shards largeBlockSize smallBlockSize interval
    let rest ← readEcShardIntervals intervals
    return data ++ rest

end

end ErasureCoding
