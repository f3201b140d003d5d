import SeaweedFS.Lib.File

/-!
# `weed/storage/erasure_coding/ec_encoder.go`: the shards of a `.dat` file

The `.dat` file is cut into rows of blocks, one block for each data shard: rows of large blocks while they are
full, then rows of small blocks. The parity shards get what the Reed-Solomon encoder makes of the buffers. Sizes
do not overflow `int64`; the files can be read and written.
-/

namespace ErasureCoding

open Lib

def dataShardsCount : Nat := 10
def parityShardsCount : Nat := 4
def maxShardCount : Nat := 32
def erasureCodingLargeBlockSize : Nat := 1024 * 1024 * 1024
def erasureCodingSmallBlockSize : Nat := 1024 * 1024

/-- `ECContext`. -/
structure ECContext where
  dataShards : Nat
  parityShards : Nat
deriving DecidableEq, Repr

/-- `NewDefaultECContext`. -/
def newDefaultECContext : ECContext where
  dataShards := dataShardsCount
  parityShards := parityShardsCount

/-- `Total`. -/
def ECContext.total (ctx : ECContext) : Nat := ctx.dataShards + ctx.parityShards

/-- The errors of encoding and decoding. -/
inductive EcError
  /-- "failed to create encoder: %w". -/
  | createEncoder
  /-- "unexpected zero buffer size": the process ends. -/
  | zeroBufferSize
  /-- "unexpected block size %d buffer size %d": the process ends. -/
  | unexpectedBlockSize (blockSize bufferSize : Nat)
  /-- "copy %s large block on shardId %d: %v". -/
  | copyLargeBlock (shardId : Nat)
  /-- "copy %s small block %d: %v". -/
  | copySmallBlock (shardId : Nat)
  /-- "read ec volume %s superblock: %v". -/
  | readSuperBlock
  /-- "ec volume %d has no live entries". -/
  | noLiveEntries
  /-- An index out of range: the runtime panics. -/
  | indexOutOfRange
  /-- A loop that never ends. -/
  | endless
deriving DecidableEq, Repr

/-- `reedsolomon.Encoder`: a byte of a parity shard comes from the bytes of the data shards at its
place. -/
structure Encoder where
  parityByte : Nat → List UInt8 → UInt8

/-- `Encode`: the data buffers stay as they are, and the parity buffers are filled. -/
def Encoder.encode (enc : Encoder) (ctx : ECContext) (bufferSize : Nat) (data : List (List UInt8)) :
    List (List UInt8) :=
  data ++ (List.range ctx.parityShards).map fun j =>
    (List.range bufferSize).map fun t => enc.parityByte j (data.map (·.getD t 0))

section
variable (ctx : ECContext) (enc : Encoder) (file : File)

/-- A buffer of `bufferSize` bytes, read at `off`, and zero behind the end of the file. -/
def fillBuffer (bufferSize off : Nat) : List UInt8 :=
  let (bytes, _) := file.readAt bufferSize off
  bytes ++ List.replicate (bufferSize - bytes.length) 0

/-- `encodeDataOneBatch`. -/
def encodeDataOneBatch (startOffset blockSize bufferSize : Nat) (outputs : List File) : List File :=
  let data := (List.range ctx.dataShards).map fun i =>
    fillBuffer file bufferSize (startOffset + blockSize * i)
  List.zipWith (· ++ ·) outputs (enc.encode ctx bufferSize data)

/-- `encodeData`. -/
def encodeData (startOffset blockSize bufferSize : Nat) (outputs : List File) :
    Except EcError (List File) :=
  if bufferSize = 0 then .error .zeroBufferSize
  else if blockSize % bufferSize ≠ 0 then .error (.unexpectedBlockSize blockSize bufferSize)
  else .ok ((List.range (blockSize / bufferSize)).foldl (fun outputs b =>
    encodeDataOneBatch ctx enc file (startOffset + b * bufferSize) blockSize bufferSize outputs)
    outputs)

/-- The loop over the rows of large blocks: what is left, what is done, and the shards. -/
def encodeLargeRows (largeBlockSize bufferSize : Nat) :
    Nat → Nat → Nat → List File → Except EcError (Nat × Nat × List File)
  | 0, _, _, _ => .error .endless
  | fuel + 1, remainingSize, processedSize, outputs =>
    let largeRowSize := largeBlockSize * ctx.dataShards
    if remainingSize ≥ largeRowSize then do
      let outputs ← encodeData ctx enc file processedSize largeBlockSize bufferSize outputs
      encodeLargeRows largeBlockSize bufferSize fuel (remainingSize - largeRowSize)
        (processedSize + largeRowSize) outputs
    else return (remainingSize, processedSize, outputs)

/-- The loop over the rows of small blocks; the size left goes below zero with the last one, and is
zero here. -/
def encodeSmallRows (smallBlockSize bufferSize : Nat) :
    Nat → Nat → Nat → List File → Except EcError (List File)
  | 0, _, _, _ => .error .endless
  | fuel + 1, remainingSize, processedSize, outputs =>
    let smallRowSize := smallBlockSize * ctx.dataShards
    if remainingSize > 0 then do
      let outputs ← encodeData ctx enc file processedSize smallBlockSize bufferSize outputs
      encodeSmallRows smallBlockSize bufferSize fuel (remainingSize - smallRowSize)
        (processedSize + smallRowSize) outputs
    else return outputs

/-- `encodeDatFile`: the shards. A loop with more rows than there are bytes never ends. -/
def encodeDatFile (remainingSize bufferSize largeBlockSize smallBlockSize : Nat) :
    Except EcError (List File) :=
  if ctx.dataShards = 0 then .error .createEncoder
  else do
    let outputs := List.replicate ctx.total []
    let (remainingSize, processedSize, outputs) ←
      encodeLargeRows ctx enc file largeBlockSize bufferSize (remainingSize + 1) remainingSize 0 outputs
    encodeSmallRows ctx enc file smallBlockSize bufferSize (remainingSize + 1) remainingSize
      processedSize outputs

/-- `generateEcFiles`. -/
def generateEcFiles (bufferSize largeBlockSize smallBlockSize : Nat) : Except EcError (List File) :=
  encodeDatFile ctx enc file file.length bufferSize largeBlockSize smallBlockSize

/-- The number of rows of large blocks that `encodeDatFile` writes for the file. -/
def largeRowsWritten (bufferSize largeBlockSize : Nat) : Except EcError Nat := do
  let (_, processedSize, _) ← encodeLargeRows ctx enc file largeBlockSize bufferSize (file.length + 1)
    file.length 0 (List.replicate ctx.total [])
  return processedSize / (largeBlockSize * ctx.dataShards)

/-- `WriteEcFilesWithContext`. -/
def writeEcFilesWithContext : Except EcError (List File) :=
  generateEcFiles ctx enc file (256 * 1024) erasureCodingLargeBlockSize erasureCodingSmallBlockSize

end

end ErasureCoding
