import SeaweedFS.Storage.ErasureCoding.Encoder

/-!
# `weed/storage/erasure_coding/ec_decoder.go`: the `.dat` file of shards

`WriteDatFile` reads the shards of the data side by side, in large blocks while the size left is that of
a row, then in small ones.
-/

namespace ErasureCoding

open Lib

/-- A row of large blocks: each shard's next block is copied to the `.dat` file. The shards are what is
left of them to read. -/
def copyLargeRow (largeBlockSize : Nat) :
    Nat → List File → File → Except EcError (List File × File)
  | _, [], datFile => .ok ([], datFile)
  | shardId, input :: inputs, datFile =>
    if input.length < largeBlockSize then .error (.copyLargeBlock shardId)
    else do
      let (inputs, datFile) ←
        copyLargeRow largeBlockSize (shardId + 1) inputs (datFile ++ input.take largeBlockSize)
      return (input.drop largeBlockSize :: inputs, datFile)

/-- A row of small blocks, as far as the size left goes. -/
def copySmallRow (smallBlockSize : Nat) :
    Nat → List File → File → Nat → Except EcError (List File × File × Nat)
  | _, [], datFile, datFileSize => .ok ([], datFile, datFileSize)
  | shardId, input :: inputs, datFile, datFileSize =>
    let toRead := min datFileSize smallBlockSize
    if input.length < toRead then .error (.copySmallBlock shardId)
    else do
      let (inputs, datFile, datFileSize) ← copySmallRow smallBlockSize (shardId + 1) inputs
        (datFile ++ input.take toRead) (datFileSize - toRead)
      return (input.drop toRead :: inputs, datFile, datFileSize)

/-- The loop over the rows of large blocks. -/
def copyLargeRows (dataShards largeBlockSize : Nat) :
    Nat → Nat → List File → File → Except EcError (Nat × List File × File)
  | 0, _, _, _ => .error .endless
  | fuel + 1, datFileSize, inputs, datFile =>
    if datFileSize ≥ dataShards * largeBlockSize then do
      let (inputs, datFile) ← copyLargeRow largeBlockSize 0 inputs datFile
      copyLargeRows dataShards largeBlockSize fuel (datFileSize - dataShards * largeBlockSize) inputs
        datFile
    else return (datFileSize, inputs, datFile)

/-- The loop over the rows of small blocks. -/
def copySmallRows (smallBlockSize : Nat) : Nat → Nat → List File → File → Except EcError File
  | 0, _, _, _ => .error .endless
  | fuel + 1, datFileSize, inputs, datFile =>
    if datFileSize > 0 then do
      let (inputs, datFile, datFileSize) ← copySmallRow smallBlockSize 0 inputs datFile datFileSize
      copySmallRows smallBlockSize fuel datFileSize inputs datFile
    else return datFile

/-- `WriteDatFile`, with its constants as arguments. -/
def writeDatFileWith (dataShards largeBlockSize smallBlockSize datFileSize : Nat)
    (shardFiles : List File) : Except EcError File :=
  if shardFiles.length < dataShards then .error .indexOutOfRange
  else do
    let (datFileSize, inputs, datFile) ← copyLargeRows dataShards largeBlockSize (datFileSize + 1)
      datFileSize (shardFiles.take dataShards) []
    copySmallRows smallBlockSize (datFileSize + 1) datFileSize inputs datFile

/-- `WriteDatFile`. -/
def writeDatFile (datFileSize : Nat) (shardFiles : List File) : Except EcError File :=
  writeDatFileWith dataShardsCount erasureCodingLargeBlockSize erasureCodingSmallBlockSize datFileSize
    shardFiles

end ErasureCoding
